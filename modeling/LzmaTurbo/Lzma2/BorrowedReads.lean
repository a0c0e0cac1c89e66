import LzmaTurbo.Lzma2.Reader
import LzmaTurbo.Lzma2.CallStatus
import LzmaTurbo.Lzma2.Safety

/-!
# A borrowed read is a read

`read_contiguous` makes the calls of the decoder that `decode` makes for the same room: its
limit stays where the first of them put it, short of the dictionary's end.
-/
namespace LzmaTurbo.Lzma2
open Machine Lzma

/-- A decoder between two calls, with a dictionary of its own. -/
def Lzma2Decoder.Usable (d : Lzma2Decoder) : Prop :=
  Ready2 d ∧ d.decoder.prop.dictSize ≤ d.decoder.dicBufSize

section
variable {d : Lzma2Decoder}

theorem wrapped_of_lt (h : d.decoder.dicPos < d.decoder.dicBufSize) : d.wrapped = d := by
  unfold Lzma2Decoder.wrapped LzmaDec.wrapped
  rw [if_neg (by omega)]

theorem Lzma2Decoder.Usable.wrapped (h : d.Usable) : d.wrapped.Usable := by
  obtain ⟨⟨⟨pos, held, out, hat⟩, hroom⟩, hsize⟩ := h
  obtain ⟨hprop, hbuf⟩ := wrapped_sizes d
  exact ⟨⟨⟨pos, held, out, hat.wrapped hsize⟩, (wrapped_probs d.decoder).symm ▸ hroom⟩,
    by rw [hprop, hbuf]; exact hsize⟩

theorem Lzma2Decoder.Usable.wrapped_lt (h : d.Usable) :
    d.wrapped.decoder.dicPos < d.wrapped.decoder.dicBufSize :=
  wrapped_room h.1.shape h.2

/-- `decode` wraps first of all. -/
theorem decodeBuf2_wrapped (h : d.Usable) (input : List UInt8) (mode : FinishMode)
    (fuel outSize n : ℕ) (acc : List UInt8) :
    decodeBuf2 input mode fuel d outSize n acc =
      decodeBuf2 input mode fuel d.wrapped outSize n acc := by
  cases fuel with
  | zero => rfl
  | succ fuel =>
      rw [decodeBuf2, decodeBuf2, wrapped_of_lt h.wrapped_lt]

end

namespace Lzma2Reader
variable {ε : Type} {d : Lzma2Decoder} {src : Source ε}

/-- What `decode` has copied out is what the dictionary holds since `start`. -/
def Copied (d : Lzma2Decoder) (start : ℕ) (out : List UInt8) : Prop :=
  (d.decoder.dic.toList.take d.decoder.dicPos).drop start = out ∧
    d.decoder.dicPos = start + out.length

/-- The end of a call of `decode`, as the loop that lends its output sees it. -/
def lent (r : Buf2Result) : Lzma2Decoder × Except Error (ℕ × Status) :=
  (r.d, r.res.map fun pr => (pr.read, pr.status))

/-- The calls are the same ones, by induction on the room left. -/
theorem contiguousTurns_eq {start max n fuel : ℕ} {acc : List UInt8} (h : d.Usable)
    (hn : n ≤ (src.buf.drop src.pos).length) (hpos : src.pos ≤ src.buf.length)
    (hmax : start + max ≤ d.decoder.dicBufSize) (hacc : Copied d start acc)
    (hlt : acc.length < max) (hfuel : max - acc.length < fuel) :
    ∃ r, decodeBuf2 (src.buf.drop src.pos) .any fuel d (max - acc.length) n acc = .ok r ∧
      contiguousTurns src start max fuel d n = .ok (lent r) ∧ r.d.Usable ∧
      r.d.decoder.dicBufSize = d.decoder.dicBufSize ∧
      ∀ pr, r.res = .ok pr → Copied r.d start r.out := by
  induction fuel generalizing d n acc with
  | zero => omega
  | succ fuel ih =>
      obtain ⟨⟨⟨pos, held, out, hat⟩, hroom⟩, hsize⟩ := h
      obtain ⟨hdrop, hat_pos⟩ := hacc
      have hshape := hat.shape
      have hle := hshape.size_le
      have hwrap : d.wrapped = d := wrapped_of_lt (by omega)
      rw [List.length_drop] at hn
      have hinput : slice src.buf (src.pos + n) src.buf.length =
          .ok ((src.buf.drop src.pos).drop n) := by
        rw [slice_spec (by omega) le_rfl, List.drop_drop, List.take_of_length_le (by simp)]
      have hsrc : Lzma.slice (src.buf.drop src.pos) n (src.buf.drop src.pos).length =
          .ok ((src.buf.drop src.pos).drop n) := by
        rw [slice_spec (by rw [List.length_drop]; omega) le_rfl,
          List.take_of_length_le (by rw [List.length_drop])]
      have hlimit : d.decoder.dicPos + (max - acc.length) = start + max := by omega
      obtain ⟨r, hr, new, hframe, hsound, hres, -⟩ := decodeToDic_end
        ((src.buf.drop src.pos).drop n) .any hat (show d.decoder.dicPos ≤ start + max by omega) hmax
      have husable : r.d.Usable :=
        ⟨⟨hsound, hframe.probs ▸ hroom⟩, by rw [hframe.dict, hframe.size]; exact hsize⟩
      have hnewpos := hframe.pos
      have hposle := hframe.pos_le
      have hslice := hframe.slice (by omega)
      have hfit : max - acc.length ≤ d.decoder.dicBufSize - d.decoder.dicPos := by omega
      rw [decodeBuf2, contiguousTurns]
      simp only [hwrap, hinput, hsrc, ok_bind, if_pos hfit, hlimit, hr,
        sub_ok (show d.decoder.dicPos ≤ d.decoder.dicBufSize by omega)]
      rcases hres with ⟨k, hk, hres⟩ | hres
      · rw [List.length_drop, List.length_drop] at hk
        have hcopied : Copied r.d start (acc ++ new) := by
          refine ⟨?_, by rw [List.length_append]; omega⟩
          rw [hframe.wrote, List.drop_append_of_le_length, hdrop]
          rw [List.length_take, Array.length_toList]
          omega
        have hsum : max - acc.length - new.length = max - (acc ++ new).length := by
          rw [List.length_append]
          omega
        simp only [hres, ok_bind, sub_ok (show d.decoder.dicPos ≤ r.d.decoder.dicPos by omega),
          show r.d.decoder.dicPos - d.decoder.dicPos = new.length by omega, hslice,
          sub_ok (show new.length ≤ max - acc.length by omega),
          sub_ok (show start ≤ r.d.decoder.dicPos by omega)]
        by_cases hstop : new.length = 0 ∨ max - acc.length - new.length = 0
        · refine ⟨_, if_pos hstop, ?_, husable, hframe.size, fun pr _ => hcopied⟩
          by_cases h0 : new.length = 0
          · rw [if_pos (by omega)]
            rfl
          · rw [if_neg (by omega), if_pos (by omega)]
            rfl
        · rw [if_neg hstop, if_neg (by omega), if_neg (by omega), hsum]
          obtain ⟨r', h1, h2, h3, h4, h5⟩ := ih husable
            (show n + k ≤ (src.buf.drop src.pos).length by rw [List.length_drop]; omega)
            (by rw [hframe.size]; exact hmax) hcopied (by omega) (by omega)
          exact ⟨r', h1, h2, h3, h4.trans hframe.size, h5⟩
      · simp only [hres]
        exact ⟨_, rfl, rfl, husable, hframe.size, fun pr hpr => by cases hpr⟩

theorem fill_spec (s : Source ε) (h : s.pos ≤ s.buf.length) :
    s.fill.2.pos ≤ s.fill.2.buf.length ∧ (s.fill.1 = .ok () → s.fill.2.left = s.left ∧
      (s.fill.2.pos = s.fill.2.buf.length → s.fill.2.eof = true)) := by
  unfold Source.fill
  by_cases hempty : s.pos = s.buf.length ∧ s.eof = false
  · rw [if_pos hempty]
    have hbuf : s.buf.length - s.pos = 0 := by omega
    cases hin : s.inner with
    | nil => exact ⟨le_rfl, fun _ => ⟨by simp [Source.left, hin, hbuf], fun _ => rfl⟩⟩
    | cons event inner =>
        cases event with
        | error e => exact ⟨le_rfl, fun hok => by cases hok⟩
        | ok bytes =>
            refine ⟨Nat.zero_le _, fun _ => ⟨by simp [Source.left, hin, hbuf], fun hz => ?_⟩⟩
            rw [List.isEmpty_iff, ← List.length_eq_zero_iff]
            exact hz.symm
  · rw [if_neg hempty]
    refine ⟨h, fun _ => ⟨rfl, fun hz => ?_⟩⟩
    cases heof : s.eof with
    | true => rfl
    | false => exact absurd ⟨hz, heof⟩ hempty

/-- What a reader keeps between its calls. -/
structure Good (r : Lzma2Reader ε) : Prop where
  usable : r.dec.Usable
  pos_le : r.src.pos ≤ r.src.buf.length

/-- What a call of `decode` tells the reader. -/
structure Told (input : List UInt8) (max : ℕ) (res : Buf2Result) : Prop where
  usable : res.d.Usable
  written : ∀ pr, res.res = .ok pr → pr.written = res.out.length
  read : ∀ pr, res.res = .ok pr → pr.read ≤ input.length
  idle : ∀ pr, res.res = .ok pr → pr.written = 0 → pr.status ≠ .finishedWithMark →
    pr.read = input.length

theorem decode_told (h : d.Usable) (input : List UInt8) {max : ℕ} (hmax : 0 < max) :
    ∃ res, d.decode input max .any = .ok res ∧ Told input max res := by
  obtain ⟨res, hres, hsound, hdict, hbuf, hprobs, -⟩ := decodeBuf2_sound .any [] h.1.sound h.2
    (Nat.zero_le input.length) (Nat.lt_succ_self max)
  obtain ⟨-, hall⟩ := decodeBuf2_says h.1.sound h.2 (Nat.zero_le _) hres
  refine ⟨res, hres, ⟨⟨hsound, hprobs ▸ h.1.room⟩, by rw [hdict, hbuf]; exact h.2⟩,
    fun pr hpr => (hall pr hpr).written, fun pr hpr => (hall pr hpr).read.2,
    fun pr hpr h0 hst => ?_⟩
  have hs := hall pr hpr
  have hw := hs.written
  rcases hs.status with hst' | hst' | hst'
  · exact hst'.2
  · exact absurd hst' hst
  · rw [List.length_nil] at hst'
    omega

/-- The borrowed form of a read. -/
def Outcome.lend (o : Outcome ε) (sink : List UInt8 → Except ε Unit) : Borrowed ε where
  reader := o.reader
  given := if o.bytes = [] then none else some o.bytes
  res := if o.bytes = [] then some o.res
    else some (match sink o.bytes with
      | .ok () => o.res
      | .error e => .error (.io e))

/-- A round that goes on has used up a byte. -/
theorem left_advance {s : Source ε} {n : ℕ} (hpos : s.pos ≤ s.buf.length)
    (hn : n = (s.buf.drop s.pos).length) (hne : n ≠ 0) :
    ({ s with pos := s.pos + n } : Source ε).left < s.left := by
  rw [List.length_drop] at hn
  unfold Source.left
  dsimp only
  omega

/-- The calls of one round, when its room does not reach past the dictionary's end. -/
theorem turns_decode {max : ℕ} {res : Buf2Result} (h : d.Usable) (hpos : src.pos ≤ src.buf.length)
    (hmax : 0 < max) (hroom : d.wrapped.decoder.dicPos + max ≤ d.decoder.dicBufSize)
    (hres : d.decode (src.buf.drop src.pos) max .any = .ok res) :
    contiguousTurns src d.wrapped.decoder.dicPos max (max + 1) d.wrapped 0 = .ok (lent res) ∧
      res.d.decoder.dicBufSize = d.decoder.dicBufSize ∧
      ∀ pr, res.res = .ok pr → Copied res.d d.wrapped.decoder.dicPos res.out := by
  obtain ⟨-, hbuf⟩ := wrapped_sizes d
  have hnone : Copied d.wrapped d.wrapped.decoder.dicPos [] := by
    refine ⟨List.drop_eq_nil_of_le ?_, rfl⟩
    rw [List.length_take]
    omega
  have hfuel : max - ([] : List UInt8).length < max + 1 := by
    rw [List.length_nil]
    omega
  obtain ⟨res', h1, h2, -, h4, h5⟩ := contiguousTurns_eq h.wrapped (Nat.zero_le _) hpos
    (by rw [hbuf]; exact hroom) hnone hmax hfuel
  have hsame : d.decode (src.buf.drop src.pos) max .any = .ok res' := by
    rw [Lzma2Decoder.decode, decodeBuf2_wrapped h]
    exact h1
  rw [hres, Except.ok.injEq] at hsame
  subst hsame
  exact ⟨h2, h4.trans hbuf, h5⟩

/-- A read leaves a reader to read from, and gives the bytes it counts. -/
structure Outcome.Sane (o : Outcome ε) : Prop where
  good : o.reader.Good
  count : ∀ n, o.res = .ok n → n = o.bytes.length
  failed : ∀ e, o.res = .error e → o.bytes = []

/-- Both loops: each round makes the same calls, by induction on the rounds. -/
theorem readLoop_spec {fuel max : ℕ} {r : Lzma2Reader ε} (hmax : 0 < max) (h : r.Good)
    (hfuel : r.src.left < fuel) : ∃ o, readLoop max fuel r = .ok o ∧ o.Sane ∧
      (r.dec.wrapped.decoder.dicPos + max ≤ r.dec.decoder.dicBufSize →
        ∀ sink, readContiguous max sink fuel r = .ok (o.lend sink)) := by
  induction fuel generalizing r with
  | zero => omega
  | succ fuel ih =>
      obtain ⟨hle, hfilled⟩ := fill_spec r.src h.pos_le
      rw [readLoop]
      cases hf : r.src.fill with
      | mk st src =>
          rw [hf] at hle hfilled
          dsimp only at hle hfilled
          cases st with
          | error e =>
              refine ⟨_, rfl, ⟨⟨h.usable, hle⟩, fun _ hn => (by cases hn), fun _ _ => rfl⟩,
                fun _ sink => ?_⟩
              rw [readContiguous, hf]
              rfl
          | ok u =>
              obtain ⟨hleft, heof⟩ := hfilled rfl
              have hslice : slice src.buf src.pos src.buf.length = .ok (src.buf.drop src.pos) := by
                rw [slice_spec hle le_rfl, List.take_of_length_le (by rw [List.length_drop])]
              obtain ⟨res, hdec, htold⟩ := decode_told h.usable (src.buf.drop src.pos) hmax
              dsimp only
              rw [hslice, ok_bind, hdec, ok_bind]
              have hturns := fun hroom => turns_decode h.usable hle hmax hroom hdec
              cases hres : res.res with
              | error e =>
                  refine ⟨_, rfl, ⟨⟨htold.usable, hle⟩, fun _ hn => (by cases hn), fun _ _ => rfl⟩,
                    fun hroom sink => ?_⟩
                  obtain ⟨h1, -, -⟩ := hturns hroom
                  rw [readContiguous, hf]
                  dsimp only
                  rw [h1, ok_bind, lent, hres]
                  rfl
              | ok pr =>
                  have hread := htold.read pr hres
                  have hwritten := htold.written pr hres
                  rw [List.length_drop] at hread
                  obtain ⟨next, hnext⟩ : ∃ next : Lzma2Reader ε, next =
                      { src := { src with pos := src.pos + pr.read }, dec := res.d
                        done := r.done || decide (pr.status = .finishedWithMark) } := ⟨_, rfl⟩
                  have hgood : next.Good := by
                    subst hnext
                    exact ⟨htold.usable, by dsimp only; omega⟩
                  dsimp only
                  rw [← hnext]
                  by_cases hw : pr.written = 0
                  · rw [if_pos hw]
                    have hstay : r.dec.wrapped.decoder.dicPos + max ≤ r.dec.decoder.dicBufSize →
                        res.d.decoder.dicPos = r.dec.wrapped.decoder.dicPos := fun hroom => by
                      obtain ⟨-, -, hcopied⟩ := hturns hroom
                      have hpos := (hcopied pr hres).2
                      omega
                    by_cases hfin : (r.done || decide (pr.status = .finishedWithMark)) = true
                    · rw [if_pos hfin]
                      refine ⟨_, rfl, ⟨hgood, fun n hn => (by cases hn; rfl), fun _ _ => rfl⟩,
                        fun hroom sink => ?_⟩
                      obtain ⟨h1, -, -⟩ := hturns hroom
                      rw [readContiguous, hf]
                      dsimp only
                      rw [h1, ok_bind, lent, hres]
                      dsimp only [Except.map]
                      rw [← hnext, if_neg (not_not.mpr (hstay hroom)), if_pos hfin]
                      rfl
                    · rw [if_neg hfin]
                      by_cases htr : (pr.read == 0 && src.eof) = true
                      · rw [if_pos htr]
                        refine ⟨_, rfl, ⟨hgood, fun n hn => (by cases hn), fun _ _ => rfl⟩,
                          fun hroom sink => ?_⟩
                        obtain ⟨h1, -, -⟩ := hturns hroom
                        rw [readContiguous, hf]
                        dsimp only
                        rw [h1, ok_bind, lent, hres]
                        dsimp only [Except.map]
                        rw [← hnext, if_neg (not_not.mpr (hstay hroom)), if_neg hfin, if_pos htr]
                        rfl
                      · rw [if_neg htr]
                        have hst : pr.status ≠ .finishedWithMark := fun hst => hfin (by simp [hst])
                        have hidle := htold.idle pr hres hw hst
                        have hne : pr.read ≠ 0 := fun h0 => by
                          rw [h0, List.length_drop] at hidle
                          apply htr
                          rw [h0, heof (by omega)]
                          rfl
                        have hless := left_advance hle hidle hne
                        obtain ⟨o, ho, hsane, hsame⟩ := ih hgood (by subst hnext; dsimp only; omega)
                        refine ⟨o, ho, hsane, fun hroom sink => ?_⟩
                        obtain ⟨h1, hsize, -⟩ := hturns hroom
                        rw [readContiguous, hf]
                        dsimp only
                        rw [h1, ok_bind, lent, hres]
                        dsimp only [Except.map]
                        rw [← hnext, if_neg (not_not.mpr (hstay hroom)), if_neg hfin, if_neg htr]
                        refine hsame ?_ sink
                        subst hnext
                        dsimp only
                        rw [wrapped_of_lt (by rw [hstay hroom, hsize]; omega), hstay hroom, hsize]
                        exact hroom
                  · rw [if_neg hw]
                    refine ⟨_, rfl, ⟨hgood, fun n hn => ?_, fun _ he => (by cases he)⟩,
                      fun hroom sink => ?_⟩
                    · cases hn
                      exact hwritten
                    · obtain ⟨h1, -, hcopied⟩ := hturns hroom
                      obtain ⟨hbytes, hpos⟩ := hcopied pr hres
                      have hshape := htold.usable.1.shape
                      have hple := hshape.pos_le
                      have hsle := hshape.size_le
                      have hlent : slice res.d.decoder.dic.toList r.dec.wrapped.decoder.dicPos
                          res.d.decoder.dicPos = .ok res.out := by
                        rw [slice_spec (by omega) (by rw [Array.length_toList]; omega),
                          ← List.drop_take, hbytes]
                      have hsome : res.out ≠ [] := fun hnil => hw (by rw [hwritten, hnil]; rfl)
                      rw [readContiguous, hf]
                      dsimp only
                      rw [h1, ok_bind, lent, hres]
                      dsimp only [Except.map]
                      have hlen : res.d.decoder.dicPos - r.dec.wrapped.decoder.dicPos =
                          res.out.length := by omega
                      rw [← hnext, if_pos (by omega), hlent, ok_bind, sub_ok (by omega), ok_bind,
                        Outcome.lend, if_neg hsome, if_neg hsome]
                      cases sink res.out with
                      | ok u => simp only [hwritten, hlen]
                      | error e => rfl

/-- The readers that reads of either kind lead to. -/
inductive Reachable : Lzma2Reader ε → Prop
  | new {inner : List (Except ε (List UInt8))} {dictProp : ℕ} {r : Lzma2Reader ε} :
      new inner dictProp = .ok r → Reachable r
  | read {r : Lzma2Reader ε} {max : ℕ} {o : Outcome ε} : Reachable r → r.read max = .ok o →
      Reachable o.reader
  | borrowed {r : Lzma2Reader ε} {max : ℕ} {sink : List UInt8 → Except ε Unit} {b : Borrowed ε} :
      Reachable r → r.readBorrowed max sink = .ok b → Reachable b.reader

theorem good_new {inner : List (Except ε (List UInt8))} {dictProp : ℕ} {r : Lzma2Reader ε}
    (h : new inner dictProp = .ok r) : r.Good := by
  unfold new at h
  obtain ⟨dec, hdec, h⟩ := bind_eq_ok h
  cases h
  exact ⟨(Lzma2Decoder.Owns.whole dictProp hdec).ready, le_rfl⟩

theorem Good.available {r : Lzma2Reader ε} (h : r.Good) : ∃ available,
    r.available = .ok available ∧
      r.dec.wrapped.decoder.dicPos + available = r.dec.decoder.dicBufSize := by
  have hple := h.usable.1.shape.pos_le
  by_cases hfull : r.dec.decoder.dicPos = r.dec.decoder.dicBufSize
  · refine ⟨_, if_pos hfull, ?_⟩
    unfold Lzma2Decoder.wrapped LzmaDec.wrapped
    rw [if_pos hfull, Nat.zero_add]
  · refine ⟨_, (if_neg hfull).trans (sub_ok hple), ?_⟩
    rw [wrapped_of_lt (by omega)]
    omega

/-- One read of either kind. -/
theorem Good.reads {r : Lzma2Reader ε} (h : r.Good) (max : ℕ) : ∃ o, r.read max = .ok o ∧ o.Sane ∧
    ∀ sink, ∃ b, r.readBorrowed max sink = .ok b ∧
      (b = { reader := r, given := none, res := none } ∨ b = o.lend sink) := by
  by_cases hnone : r.done = true ∨ max = 0
  · refine ⟨_, if_pos hnone, ⟨h, fun n hn => (by cases hn; rfl), fun _ _ => rfl⟩, fun sink => ?_⟩
    exact ⟨_, if_pos hnone, .inr rfl⟩
  · obtain ⟨o, ho, hsane, hsame⟩ := readLoop_spec (Nat.pos_of_ne_zero (not_or.mp hnone).2) h
      (Nat.lt_succ_self r.src.left)
    refine ⟨o, (if_neg hnone).trans ho, hsane, fun sink => ?_⟩
    obtain ⟨available, havail, hroom⟩ := h.available
    unfold readBorrowed
    rw [if_neg hnone, havail, ok_bind]
    by_cases hlong : available < max
    · exact ⟨_, if_pos hlong, .inl rfl⟩
    · exact ⟨_, (if_neg hlong).trans (hsame (by omega) sink), .inr rfl⟩

theorem Reachable.good {r : Lzma2Reader ε} (h : Reachable r) : r.Good := by
  induction h with
  | new hn => exact good_new hn
  | @read r max o _ ho ih =>
      obtain ⟨o', ho', hsane, -⟩ := ih.reads max
      rw [ho, Except.ok.injEq] at ho'
      exact ho' ▸ hsane.good
  | @borrowed r max sink b _ hb ih =>
      obtain ⟨o, -, hsane, hborrow⟩ := ih.reads max
      obtain ⟨b', hb', hcase⟩ := hborrow sink
      rw [hb, Except.ok.injEq] at hb'
      subst hb'
      rcases hcase with rfl | rfl
      · exact ih
      · exact hsane.good

/-- Reads one after another, errors included. -/
def readRun : List ℕ → Lzma2Reader ε → Except Fault (List (Outcome ε))
  | [], _ => .ok []
  | max :: rest, r => do
      let o ← r.read max
      let later ← readRun rest o.reader
      .ok (o :: later)

/-- The caller reads where a borrowed read is declined. -/
def Borrowed.orRead (b : Borrowed ε) (max : ℕ) : Except Fault (Outcome ε) :=
  match b.res with
  | none => b.reader.read max
  | some res => .ok { reader := b.reader, bytes := b.given.getD [], res }

/-- The same with borrowed reads. -/
def borrowRun : List ℕ → Lzma2Reader ε → Except Fault (List (Outcome ε))
  | [], _ => .ok []
  | max :: rest, r => do
      let b ← r.readBorrowed max fun _ => .ok ()
      let o ← b.orRead max
      let later ← borrowRun rest o.reader
      .ok (o :: later)

theorem lend_orRead (o : Outcome ε) (max : ℕ) :
    (o.lend fun _ => .ok ()).orRead max = .ok o := by
  obtain ⟨reader, bytes, res⟩ := o
  unfold Outcome.lend Borrowed.orRead
  cases bytes with
  | nil => rfl
  | cons b bytes => rfl

theorem Good.readRun_ok {r : Lzma2Reader ε} (h : r.Good) (maxima : List ℕ) :
    ∃ os, readRun maxima r = .ok os := by
  induction maxima generalizing r with
  | nil => exact ⟨_, rfl⟩
  | cons max rest ih =>
      obtain ⟨o, ho, hsane, -⟩ := h.reads max
      obtain ⟨os, hos⟩ := ih hsane.good
      exact ⟨_, by rw [readRun, ho, ok_bind, hos, ok_bind]⟩

theorem borrowRun_eq {r : Lzma2Reader ε} (h : r.Good) (maxima : List ℕ) :
    borrowRun maxima r = readRun maxima r := by
  induction maxima generalizing r with
  | nil => rfl
  | cons max rest ih =>
      obtain ⟨o, ho, hsane, hborrow⟩ := h.reads max
      obtain ⟨b, hb, hcase⟩ := hborrow fun _ => .ok ()
      rw [borrowRun, readRun, hb, ok_bind, ho, ok_bind, ← ih hsane.good]
      rcases hcase with rfl | rfl
      · rw [Borrowed.orRead, ho, ok_bind]
      · rw [lend_orRead, ok_bind]

/-- A borrowed read is declined and changes nothing, or lends what a read would give, returns
what it would return (unless the callback fails) and leaves the reader it would leave. So a
run of borrowed reads is a run of reads. -/
theorem borrowed_reads_agree {r : Lzma2Reader ε} (h : Reachable r) :
    (∀ max, ∃ o, r.read max = .ok o ∧ (∀ n, o.res = .ok n → n = o.bytes.length) ∧
      (∀ e, o.res = .error e → o.bytes = []) ∧ ∀ sink, ∃ b, r.readBorrowed max sink = .ok b ∧
        (b = { reader := r, given := none, res := none } ∨ b = o.lend sink)) ∧
    ∀ maxima, ∃ os, readRun maxima r = .ok os ∧ borrowRun maxima r = .ok os := by
  refine ⟨fun max => ?_, fun maxima => ?_⟩
  · obtain ⟨o, ho, hsane, hborrow⟩ := h.good.reads max
    exact ⟨o, ho, hsane.count, hsane.failed, hborrow⟩
  · obtain ⟨os, hos⟩ := h.good.readRun_ok maxima
    exact ⟨os, hos, (borrowRun_eq h.good maxima).trans hos⟩

/-- An interrupted read first, then a stored chunk of one byte in two pieces. -/
theorem borrowed_reads_agree_cut : ∃ r : Lzma2Reader Unit,
    new [.error (), .ok [1, 0, 0], .ok [65, 0]] 0 = .ok r ∧
      ∀ maxima, ∃ os, readRun maxima r = .ok os ∧ borrowRun maxima r = .ok os := by
  obtain ⟨d, hd, -⟩ := Lzma2Decoder.new_at (show 0 ≤ 40 by decide)
  have hr : new [.error (), .ok [1, 0, 0], .ok [65, 0]] 0 =
      .ok (⟨.new [.error (), .ok [1, 0, 0], .ok [65, 0]], d, false⟩ : Lzma2Reader Unit) := by
    rw [new, hd, ok_bind]
  exact ⟨_, hr, (borrowed_reads_agree (.new hr)).2⟩

end Lzma2Reader
end LzmaTurbo.Lzma2
