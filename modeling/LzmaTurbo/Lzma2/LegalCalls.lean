import LzmaTurbo.Lzma2.Acceptance
import LzmaTurbo.Lzma2.CallStatus

/-!
# Calls on a stream that ends

A stream of chunks that ends with a mark is not refused, however little room a call has,
as long as the room is not less than what is still to come.
-/
namespace LzmaTurbo.Lzma2
open Machine Lzma StreamMachine

/-- What a turn leaves: a decoder that is not past the end mark unless it says so. -/
def TurnOpen : Turn2 → Prop
  | .stop r => ∀ k, r.res = .ok k → r.status = .finishedWithMark ∨ r.d.frame.state ≠ .finished
  | .again _ _ => True

section
variable {d : Lzma2Decoder} {dicLimit n : ℕ} {src : List UInt8} {mode : FinishMode}

theorem headerTurn_open {turn : Turn2} (hs : d.frame.state ≠ .finished)
    (h : headerTurn d dicLimit src n = .ok turn) : TurnOpen turn := by
  unfold headerTurn at h
  split at h
  · cases h
    exact fun k _ => .inr hs
  · obtain ⟨b, -, h⟩ := bind_eq_ok h
    dsimp only at h
    split at h
    · cases h
      exact fun k hk => by cases hk
    · cases h
      trivial

theorem storedTurn_open {inCur outCur : ℕ} {turn : Turn2} (hs : d.frame.state ≠ .finished)
    (h : storedTurn d src n inCur outCur = .ok turn) : TurnOpen turn := by
  unfold storedTurn at h
  split at h
  · cases h
    exact fun k _ => .inr hs
  · dsimp only at h
    generalize (if outCur < inCur then outCur else inCur) = k at h
    generalize (if d.frame.state = .data then _ else d : Lzma2Decoder) = d' at h
    split at h
    · cases h
      exact fun k hk => by cases hk
    · obtain ⟨bytes, -, h⟩ := bind_eq_ok h
      obtain ⟨dic, -, h⟩ := bind_eq_ok h
      obtain ⟨check, -, h⟩ := bind_eq_ok h
      obtain ⟨unpack, -, h⟩ := bind_eq_ok h
      cases h
      trivial

theorem packedTurn_open {inCur outCur : ℕ} {cur : FinishMode} {turn : Turn2}
    (hs : d.frame.state ≠ .finished) (h : packedTurn d src n inCur outCur cur = .ok turn) :
    TurnOpen turn := by
  unfold packedTurn at h
  dsimp only at h
  obtain ⟨input, -, h⟩ := bind_eq_ok h
  obtain ⟨res, -, h⟩ := bind_eq_ok h
  have hsame : (if d.frame.state = .data then
      (⟨{ d.frame with state := .dataCont }, d.decoder.initDicAndState
        (decide (0xE0 ≤ d.frame.control)) (decide (0xA0 ≤ d.frame.control))⟩ : Lzma2Decoder)
      else d).frame.state ≠ .finished := by
    split
    · exact fun hf => by cases hf
    · exact hs
  split at h
  · cases h
    exact fun k hk => by cases hk
  · obtain ⟨packSize, -, h⟩ := bind_eq_ok h
    obtain ⟨outUsed, -, h⟩ := bind_eq_ok h
    obtain ⟨unpackSize, -, h⟩ := bind_eq_ok h
    split at h
    · split at h
      · cases h
        exact fun k hk => by cases hk
      · cases h
        exact fun k _ => .inr hsame
    · split at h
      · split at h
        · cases h
          exact fun k hk => by cases hk
        · cases h
          trivial
      · cases h
        trivial

theorem dicTurn_open {turn : Turn2} (h : dicTurn d dicLimit src mode n = .ok turn) :
    TurnOpen turn := by
  unfold dicTurn at h
  split at h
  · cases h
    exact fun k hk => by cases hk
  · split at h
    · cases h
      exact fun k _ => .inl rfl
    next hs =>
      split at h
      · cases h
        exact fun k _ => .inr hs
      · split at h
        · exact headerTurn_open hs h
        · obtain ⟨inCur, -, h⟩ := bind_eq_ok h
          obtain ⟨outCur, -, h⟩ := bind_eq_ok h
          dsimp only at h
          split at h
          · exact storedTurn_open hs h
          · exact packedTurn_open hs h

theorem dicLoop_open {fuel : ℕ} {r : Dic2Result} (h : dicLoop dicLimit src mode fuel d n = .ok r) :
    ∀ k, r.res = .ok k → r.status = .finishedWithMark ∨ r.d.frame.state ≠ .finished := by
  induction fuel generalizing d n with
  | zero => cases h
  | succ fuel ih =>
      rw [dicLoop] at h
      obtain ⟨turn, ht, h⟩ := bind_eq_ok h
      have hopen := dicTurn_open ht
      cases turn with
      | stop r' =>
          cases h
          exact hopen
      | again d' m => exact ih h

/-- A call that does not report the end mark has not come to it. -/
theorem decodeBuf2_open {fuel outSize : ℕ} {acc input : List UInt8} {r : Buf2Result}
    (h : decodeBuf2 input mode fuel d outSize n acc = .ok r) :
    ∀ pr, r.res = .ok pr → pr.status = .finishedWithMark ∨ r.d.frame.state ≠ .finished := by
  induction fuel generalizing d outSize n acc with
  | zero => cases h
  | succ fuel ih =>
      rw [decodeBuf2] at h
      dsimp only at h
      obtain ⟨room, -, h⟩ := bind_eq_ok h
      obtain ⟨src, -, h⟩ := bind_eq_ok h
      obtain ⟨r₁, hcall, h⟩ := bind_eq_ok h
      have hopen := dicLoop_open hcall
      split at h
      · cases h
        exact fun pr hpr => by cases hpr
      next inCur hres =>
        obtain ⟨outCur, -, h⟩ := bind_eq_ok h
        obtain ⟨bytes, -, h⟩ := bind_eq_ok h
        obtain ⟨outSize', -, h⟩ := bind_eq_ok h
        split at h
        · cases h
          intro pr hpr
          cases hpr
          exact hopen _ hres
        · exact ih h

/-- With no input a decoder that is not past the end mark does not come to it. -/
def TurnIdle : Turn2 → Prop
  | .stop r => ∀ k, r.res = .ok k → r.status ≠ .finishedWithMark
  | .again d _ => d.frame.state ≠ .finished

theorem headerTurn_idle {turn : Turn2} (h : headerTurn d dicLimit [] n = .ok turn) :
    TurnIdle turn := by
  unfold headerTurn at h
  split at h
  · cases h
    exact fun k _ hf => by cases hf
  · obtain ⟨b, hb, -⟩ := bind_eq_ok h
    cases hb

theorem storedTurn_idle {inCur outCur : ℕ} {turn : Turn2} (hin : inCur = 0)
    (h : storedTurn d [] n inCur outCur = .ok turn) : TurnIdle turn := by
  unfold storedTurn at h
  rw [if_pos hin] at h
  cases h
  exact fun k _ hf => by cases hf

theorem packedTurn_idle {inCur outCur : ℕ} {cur : FinishMode} {turn : Turn2}
    (hs : d.frame.state ≠ .finished) (h : packedTurn d src n inCur outCur cur = .ok turn) :
    TurnIdle turn := by
  unfold packedTurn at h
  dsimp only at h
  obtain ⟨input, -, h⟩ := bind_eq_ok h
  obtain ⟨res, -, h⟩ := bind_eq_ok h
  have hsame : (if d.frame.state = .data then
      (⟨{ d.frame with state := .dataCont }, d.decoder.initDicAndState
        (decide (0xE0 ≤ d.frame.control)) (decide (0xA0 ≤ d.frame.control))⟩ : Lzma2Decoder)
      else d).frame.state ≠ .finished := by
    split
    · exact fun hf => by cases hf
    · exact hs
  split at h
  · cases h
    exact fun k hk => by cases hk
  · obtain ⟨packSize, -, h⟩ := bind_eq_ok h
    obtain ⟨outUsed, -, h⟩ := bind_eq_ok h
    obtain ⟨unpackSize, -, h⟩ := bind_eq_ok h
    split at h
    · split at h
      · cases h
        exact fun k hk => by cases hk
      · cases h
        exact fun k _ hf => by cases hf
    · split at h
      · split at h
        · cases h
          exact fun k hk => by cases hk
        · cases h
          exact fun hf => by cases hf
      · cases h
        exact hsame

theorem dicTurn_idle {turn : Turn2} (hs : d.frame.state ≠ .finished)
    (h : dicTurn d dicLimit [] mode n = .ok turn) : TurnIdle turn := by
  unfold dicTurn at h
  split at h
  · cases h
    exact fun k hk => by cases hk
  · split at h
    · cases h
      exact fun k _ hf => by cases hf
    · split at h
      · exact headerTurn_idle h
      · obtain ⟨inCur, hin, h⟩ := bind_eq_ok h
        obtain ⟨outCur, -, h⟩ := bind_eq_ok h
        dsimp only at h
        split at h
        · refine storedTurn_idle ?_ h
          rw [(sub_eq_ok hin).2]
          exact Nat.zero_sub n
        · exact packedTurn_idle hs h

theorem dicLoop_idle {fuel : ℕ} {r : Dic2Result} (hs : d.frame.state ≠ .finished)
    (h : dicLoop dicLimit [] mode fuel d n = .ok r) :
    ∀ k, r.res = .ok k → r.status ≠ .finishedWithMark := by
  induction fuel generalizing d n with
  | zero => cases h
  | succ fuel ih =>
      rw [dicLoop] at h
      obtain ⟨turn, ht, h⟩ := bind_eq_ok h
      have hidle := dicTurn_idle hs ht
      cases turn with
      | stop r' =>
          cases h
          exact hidle
      | again d' m => exact ih hidle h

theorem decodeBuf2_idle {fuel outSize : ℕ} {acc input : List UInt8} {r : Buf2Result}
    (hin : input = []) (hs : d.frame.state ≠ .finished)
    (h : decodeBuf2 input mode fuel d outSize n acc = .ok r) :
    ∀ pr, r.res = .ok pr → pr.status ≠ .finishedWithMark := by
  induction fuel generalizing d outSize n acc with
  | zero => cases h
  | succ fuel ih =>
      rw [decodeBuf2] at h
      dsimp only at h
      obtain ⟨room, -, h⟩ := bind_eq_ok h
      obtain ⟨src, hsrc, h⟩ := bind_eq_ok h
      obtain ⟨r₁, hcall, h⟩ := bind_eq_ok h
      have hnil : src = [] := List.eq_nil_of_length_eq_zero
        ((slice_eq_ok hsrc).2.2.trans (by rw [hin]; exact Nat.zero_sub n))
      rw [hnil] at hcall
      have hidle := dicLoop_idle (show d.wrapped.frame.state ≠ .finished from hs) hcall
      have hopen := dicLoop_open hcall
      split at h
      · cases h
        exact fun pr hpr => by cases hpr
      next inCur hres =>
        obtain ⟨outCur, -, h⟩ := bind_eq_ok h
        obtain ⟨bytes, -, h⟩ := bind_eq_ok h
        obtain ⟨outSize', -, h⟩ := bind_eq_ok h
        split at h
        · cases h
          intro pr hpr
          cases hpr
          exact hidle _ hres
        · exact ih ((hopen _ hres).resolve_left (hidle _ hres)) h

end

section
variable {prop : LzmaProps} {xs ys rest out : List UInt8} {d : Lzma2Decoder} {pos : Pos}

/-- Where a stream that ends does. -/
theorem format2_mark (hv : (format2 prop xs).verdict = .mark) :
    ∃ r, Moves2 (Pos.start prop) xs (.chunk r) (0 :: (format2 prop xs).rest) := by
  obtain ⟨zs, hm, hlast⟩ := Pos.lawful.run_moves (Pos.start_ok prop) xs
  have heq : format2 prop xs = .of (run Pos.step Pos.measure (Pos.start prop) xs) := rfl
  rw [heq] at hv ⊢
  generalize run Pos.step Pos.measure (Pos.start prop) xs = res at hm hlast hv ⊢
  obtain ⟨last, left, verdict⟩ := res
  cases verdict with
  | more => cases hv
  | reject => cases hv
  | mark u =>
      obtain ⟨r, rfl, rfl⟩ := Pos.step_mark hlast
      exact ⟨r, hm⟩

/-- The mark is next when all is written and no chunk is open. -/
theorem Moves2.mark_next {r : Ref2} (h : Moves2 (Pos.start prop) xs (.chunk r) ys)
    (hv : (format2 prop xs).verdict = .mark)
    (hfull : (format2 prop xs).out.length ≤ (Pos.chunk r).out.length) :
    ∃ tail, ys = 0 :: tail := by
  cases ys with
  | nil =>
      rw [Moves2.more h rfl] at hv
      cases hv
  | cons b tail =>
      by_cases hb : b = 0
      · exact ⟨tail, by rw [hb]⟩
      · have hdue := h.dueWith_le hv
        rw [Pos.dueWith, if_neg hb, Pos.due] at hdue
        rw [Pos.out, List.length_append] at hfull
        omega

/-- When all is written only the mark is missing. -/
theorem Moves2.close (h : Moves2 (Pos.start prop) xs pos ys)
    (hv : (format2 prop xs).verdict = .mark)
    (hfull : (format2 prop xs).out.length ≤ pos.out.length) :
    ∃ r tail, (∀ zs, Moves2 pos zs (.chunk r) zs) ∧ ys = 0 :: tail := by
  have hdue := h.due_le hv
  cases pos with
  | chunk r =>
      obtain ⟨tail, htail⟩ := Moves2.mark_next h hv hfull
      exact ⟨r, tail, fun zs => .refl _ _, htail⟩
  | stored r n =>
      rw [Pos.due] at hdue
      rw [Pos.out, List.length_append] at hfull
      omega
  | packed prop' base c target pack =>
      rw [Pos.due] at hdue
      rw [Pos.out, List.length_append, List.length_drop] at hfull
      have hnever : ∀ {p : Pos}, Moves2 (Pos.start prop) xs p ys → ¬ Doomed p ys := by
        intro p hm hd
        have hend := hd.never hm []
        rw [List.append_nil] at hend
        exact hend hv
      by_cases hlong : target < c.hist.length
      · exact absurd (Doomed.of_long hlong) (hnever h)
      have hl : c.hist.length = target := by omega
      by_cases hpack : 0 < pack
      · exact absurd (Doomed.of_left hl hpack) (hnever h)
      have hstep : ∀ zs, (Pos.packed prop' base c target pack).step zs =
          if c.coder.code = 0 then .next (.chunk ⟨prop', 0, base, Config.state c⟩) zs
          else .reject := by
        intro zs
        rw [Pos.step, packedStep_full hl, if_pos (by omega)]
      by_cases hcode : c.coder.code = 0
      · have hmoves : ∀ zs, Moves2 (.packed prop' base c target pack) zs
            (.chunk ⟨prop', 0, base, Config.state c⟩) zs := fun zs =>
          .single trivial ((hstep zs).trans (if_pos hcode))
        obtain ⟨tail, htail⟩ := Moves2.mark_next (h.trans (hmoves ys)) hv (by
          rw [Pos.out, List.length_append, Config.state_hist]
          dsimp only
          omega)
        exact ⟨_, tail, hmoves, htail⟩
      · exact absurd (Doomed.of_reject ((hstep ys).trans (if_neg hcode))) (hnever h)

/-- What a call finds that is made on a stream. -/
structure Fitted (prop : LzmaProps) (xs rest out : List UInt8) (n room : ℕ) (mode : FinishMode)
    (r : Buf2Result) (pr : Progress) : Prop where
  told : Buf2Says (rest.take n) [] 0 room mode r.out pr
  stands : Stands2 prop xs (rest.drop pr.read) (out ++ r.out) r.d
  size : r.d.decoder.prop.dictSize ≤ r.d.decoder.dicBufSize
  isPrefix : out ++ r.out <+: (format2 prop xs).out
  ends : pr.status = .finishedWithMark → (format2 prop xs).verdict = .mark
  mark : pr.status = .finishedWithMark → out ++ r.out = (format2 prop xs).out ∧
    rest.drop pr.read = (format2 prop xs).rest
  goesOn : pr.status ≠ .finishedWithMark → r.d.frame.state ≠ .finished
  hungry : pr.status = .needsMoreInput → ∃ given, xs = given ++ rest.drop pr.read ∧
    (format2 prop given).verdict = .more

/-- A call is refused over the stream, or over what it may write of it. -/
theorem Stands2.finds (hst : Stands2 prop xs rest out d)
    (hsize : d.decoder.prop.dictSize ≤ d.decoder.dicBufSize) (n room : ℕ) (mode : FinishMode) :
    ∃ r, d.decode (rest.take n) room mode = .ok r ∧
      (∀ pr, r.res = .ok pr → Fitted prop xs rest out n room mode r pr) ∧
      ∀ e, r.res = .error e → (format2 prop xs).verdict ≠ .mark ∨
        mode = .endMark ∧ out.length + room < (format2 prop xs).out.length := by
  obtain ⟨t', ht', hag, hd, hb, hst'⟩ := Stands2.call (t := ⟨d, out, rest, 0, 0, none⟩) hst hsize
    ⟨n, room, mode⟩
  unfold Trace2.call at ht'
  obtain ⟨r, hr, ht'⟩ := bind_eq_ok ht'
  dsimp only at hr ht'
  have hsound : d.Sound := by
    obtain ⟨pos, held, -, hat, -⟩ := hst.here
    exact ⟨pos, held, _, hat⟩
  obtain ⟨-, htold⟩ := decodeBuf2_says hsound hsize (Nat.zero_le _) hr
  refine ⟨r, hr, fun pr hres => ?_, fun e hres => ?_⟩
  · rw [hres] at ht'
    cases ht'
    have hfinished := hag.finished ⟨n, room, mode⟩ pr rfl
    refine ⟨htold pr hres, hst' rfl, by rw [hd, hb]; exact hsize, hag.isPrefix,
      fun hm => (hfinished hm).1, fun hm => (hfinished hm).2, fun hm => ?_, fun hn => ?_⟩
    · exact (decodeBuf2_open hr pr hres).resolve_left hm
    · obtain ⟨-, given, hgiven, hmore, -⟩ := hag.hungry ⟨n, room, mode⟩ pr rfl hn
      exact ⟨given, hgiven, hmore⟩
  · rw [hres] at ht'
    cases ht'
    obtain ⟨-, hbad⟩ := hag.corrupt ⟨n, room, mode⟩ e rfl
    by_cases hv : (format2 prop xs).verdict = .mark
    case neg => exact .inl hv
    rcases hbad with hbad | ⟨hmode, hbad⟩
    · have hno := hbad []
      rw [List.append_nil] at hno
      exact .inl hno
    · have hlong := hbad []
      rw [List.append_nil] at hlong
      exact .inr ⟨hmode, hlong hv⟩

/-- A call with room for what is to come, or one that may stop short of it, is not refused. -/
theorem Stands2.fits (hst : Stands2 prop xs rest out d)
    (hsize : d.decoder.prop.dictSize ≤ d.decoder.dicBufSize)
    (hv : (format2 prop xs).verdict = .mark) (n room : ℕ) (mode : FinishMode)
    (hroom : mode = .endMark → (format2 prop xs).out.length ≤ out.length + room) :
    ∃ r pr, d.decode (rest.take n) room mode = .ok r ∧ r.res = .ok pr ∧
      Fitted prop xs rest out n room mode r pr := by
  obtain ⟨r, hr, hfit, hbad⟩ := hst.finds hsize n room mode
  cases hres : r.res with
  | ok pr => exact ⟨r, pr, hr, hres, hfit pr hres⟩
  | error e =>
      rcases hbad e hres with hno | ⟨hmode, hlong⟩
      · exact absurd hv hno
      · exact absurd (hroom hmode) (Nat.not_le_of_lt hlong)

/-- Before the mark there is still something to read. -/
theorem Stands2.unread (hst : Stands2 prop xs rest out d)
    (hsize : d.decoder.prop.dictSize ≤ d.decoder.dicBufSize)
    (hv : (format2 prop xs).verdict = .mark) (hopen : d.frame.state ≠ .finished) :
    (format2 prop xs).rest.length < rest.length := by
  obtain ⟨r, pr, hr, hres, hfit⟩ := hst.fits hsize hv 0 ((format2 prop xs).out.length + 1) .any
    (fun hm => by cases hm)
  have hnil : rest.take 0 = [] := List.take_zero
  have hread : pr.read = 0 := by
    have hle := hfit.told.read.2
    rw [hnil] at hle
    exact Nat.le_zero.1 hle
  rw [Lzma2Decoder.decode] at hr
  have hidle := decodeBuf2_idle hnil hopen hr pr hres
  rcases hfit.told.status with ⟨hn, -⟩ | hm | ⟨-, -, hlen⟩
  · obtain ⟨given, hgiven, hmore⟩ := hfit.hungry hn
    obtain ⟨r', hmoves⟩ := format2_mark hv
    rw [← List.singleton_append] at hmoves
    obtain ⟨u, hu, hmark⟩ := Moves.given Pos.lawful hmoves
    rw [hread, List.drop_zero] at hgiven
    by_contra hge
    have hle : u.length ≤ given.length := by
      have h₁ := congrArg List.length hgiven
      have h₂ := congrArg List.length hu
      rw [List.length_append] at h₁ h₂
      omega
    obtain ⟨w, rfl⟩ : u <+: given :=
      List.prefix_of_prefix_length_le ⟨_, hu.symm⟩ ⟨_, hgiven.symm⟩ hle
    have hstep : (Pos.chunk r').step ([0] ++ w) = .mark () w := by
      simp only [List.singleton_append, Pos.step, chunkStep, if_true]
    rw [Moves2.mark (Moves2.append hmark w) hstep] at hmore
    cases hmore
  · exact absurd hm hidle
  · have hle := hfit.isPrefix.length_le
    rw [List.length_append] at hle
    rw [List.length_nil] at hlen
    omega

/-- When all is written a call that has something to read comes to the mark. -/
theorem Fitted.closes {n room : ℕ} {mode : FinishMode} {r : Buf2Result} {pr : Progress}
    (hfit : Fitted prop xs rest out n room mode r pr) (hst : Stands2 prop xs rest out d)
    (hv : (format2 prop xs).verdict = .mark) (hfull : (format2 prop xs).out.length ≤ out.length)
    (hne : rest.take n ≠ []) : pr.status ≠ .needsMoreInput := by
  intro hn
  obtain ⟨given, hgiven, hmore⟩ := hfit.hungry hn
  obtain ⟨pos, held, hm, hat, -⟩ := hst.here
  have hread : pr.read = (rest.take n).length := by
    rcases hfit.told.status with ⟨-, hall⟩ | hm | ⟨hm, -⟩
    · exact hall
    · rw [hn] at hm
      cases hm
    · rw [hn] at hm
      cases hm
  have hsplit : rest = rest.take n ++ rest.drop pr.read := by
    rw [hread, List.length_take]
    conv_lhs => rw [← List.take_append_drop (min n rest.length) rest]
    rw [← List.take_eq_take_min]
  obtain ⟨g, hg, hmg⟩ := Moves.given Pos.lawful hm
  have hsame : given = g ++ rest.take n := by
    have htail : given ++ rest.drop pr.read = (g ++ rest.take n) ++ rest.drop pr.read := by
      rw [← hgiven, List.append_assoc, ← hsplit, hg]
    exact List.append_cancel_right htail
  have hlong : (format2 prop xs).out.length ≤ pos.out.length := by
    have hle := hat.written.length_le
    rw [List.length_reverse] at hle
    exact hfull.trans hle
  obtain ⟨r', tail, hall, hys⟩ := Moves2.close hm hv hlong
  obtain ⟨tail', htail'⟩ : ∃ tail', held ++ rest.take n = 0 :: tail' := by
    rw [hsplit, ← List.append_assoc] at hys
    cases hz : held ++ rest.take n with
    | nil => exact absurd (List.append_eq_nil_iff.1 hz).2 hne
    | cons b tail' =>
        rw [hz, List.cons_append] at hys
        exact ⟨tail', by rw [(List.cons.inj hys).1]⟩
  have hmoves := (Moves2.append hmg (rest.take n)).trans (hall _)
  rw [← hsame, htail'] at hmoves
  have hstep : (Pos.chunk r').step (0 :: tail') = .mark () tail' := by
    simp only [Pos.step, chunkStep, if_true]
  rw [Moves2.mark hmoves hstep] at hmore
  cases hmore

end
end LzmaTurbo.Lzma2
