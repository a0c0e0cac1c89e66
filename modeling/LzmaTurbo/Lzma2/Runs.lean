import LzmaTurbo.Lzma2.Acceptance
import LzmaTurbo.Lzma2.Chunks

/-!
# Runs decode alone

A run starts where the dictionary is reset, so a fresh decoder that is given the
run and an end mark goes through the chunks the sequential decoder goes through,
and only misses the output before them. The runs the scanner reports cut the
stream and its output into such pieces.
-/
namespace LzmaTurbo.Lzma2
open Machine Lzma StreamMachine

/-! ## The same chunks without what lies before -/

/-- `q` has read the run alone, `r` the whole stream; `tail` was written before the run. -/
structure Ref2.Alike (tail : List UInt8) (q r : Ref2) : Prop where
  need : q.need = r.need
  hist : q.s.hist = r.s.hist
  base : r.base = q.base ++ tail
  dict : q.prop.dictSize = r.prop.dictSize
  kept : r.need = 0 → q.prop = r.prop ∧ q.s = r.s

inductive Pos.Alike (tail : List UInt8) : Pos → Pos → Prop
  | chunk {q r : Ref2} : q.Alike tail r → Alike tail (.chunk q) (.chunk r)
  | stored {q r : Ref2} (n : ℕ) : q.Alike tail r → Alike tail (.stored q n) (.stored r n)
  | packed (prop : LzmaProps) (base : List UInt8) (c : Config) (target pack : ℕ) :
      Alike tail (.packed prop base c target pack) (.packed prop (base ++ tail) c target pack)

/-- The control bytes that reset the dictionary. -/
def Resets (b : UInt8) : Prop := b = 1 ∨ 0xE0 ≤ b.toNat

def Pos.prop : Pos → LzmaProps
  | .chunk r => r.prop
  | .stored r _ => r.prop
  | .packed prop _ _ _ _ => prop

section
variable {tail xs ys : List UInt8} {q r : Ref2} {pos pos' alone : Pos} {prop : LzmaProps}

theorem Pos.Alike.out (h : alone.Alike tail pos) : pos.out = alone.out ++ tail := by
  cases h with
  | chunk h | stored n h =>
      simp only [Pos.out]
      rw [h.hist, h.base, List.append_assoc]
  | packed prop base c target pack => exact (List.append_assoc _ _ _).symm

theorem Ref2.Alike.push (h : q.Alike tail r) (b : UInt8) : (q.push b).Alike tail (r.push b) := by
  refine ⟨h.need, congrArg (b :: ·) h.hist, h.base, h.dict, fun hn => ?_⟩
  obtain ⟨hp, hs⟩ := h.kept hn
  exact ⟨hp, by simp only [Ref2.push, hs]⟩

/-- A packed chunk with its own properties and a fresh state. -/
theorem Ref2.Alike.openFresh (h : q.Alike tail r) (prop : LzmaProps) {control : ℕ}
    (h1 : 0xC0 ≤ control) (h2 : control < 0xE0) (unpack pack : ℕ) :
    (({ q with prop } : Ref2).openPacked control unpack pack).Alike tail
      (({ r with prop } : Ref2).openPacked control unpack pack) := by
  simp only [Ref2.openPacked, if_neg (show ¬ 0xE0 ≤ control by omega),
    if_pos (show 0xA0 ≤ control by omega), h.hist, h.base]
  exact .packed _ _ _ _ _

/-- A packed chunk that goes on from an earlier one. -/
theorem Ref2.Alike.openKept (h : q.Alike tail r) (hn : r.need = 0) {control : ℕ}
    (h2 : control < 0xC0) (unpack pack : ℕ) :
    (q.openPacked control unpack pack).Alike tail (r.openPacked control unpack pack) := by
  obtain ⟨hp, hs⟩ := h.kept hn
  simp only [Ref2.openPacked, if_neg (show ¬ 0xE0 ≤ control by omega), h.base, hp, hs]
  exact .packed _ _ _ _ _

/-- Within a run the headers mean the same. -/
theorem chunkStep_alike (h : q.Alike tail r) (hr : r.Ok) (hs : chunkStep r xs = .next pos ys)
    (hb : ∀ b ∈ xs.head?, ¬ Resets b) :
    ∃ alone, chunkStep q xs = .next alone ys ∧ alone.Alike tail pos := by
  obtain ⟨b, u1, u0, rfl, hctl, rfl⟩ | ⟨b, u1, u0, p1, p0, rfl, h1, hn, h2, rfl⟩ |
    ⟨b, u1, u0, p1, p0, d, prop, rfl, h1, hn, h2, hd, rfl⟩ := chunkStep_cases hs
  · obtain rfl | ⟨rfl, hne⟩ := hctl
    · exact absurd (.inl rfl) (hb 1 rfl)
    · refine ⟨_, chunkStep_stored (.inr ⟨rfl, by rwa [h.need]⟩) ys, ?_⟩
      have h21 : (2 : UInt8).toNat ≠ 1 := by decide
      simp only [Ref2.openStored, if_neg h21]
      exact .stored _ h
  · have hneed : r.need = 0 := by
      have hlt : b.toNat < 0xC0 := h2
      rcases hr.need with h0 | h0 <;> omega
    exact ⟨_, chunkStep_packed h1 (by rwa [h.need]) h2 ys, h.openKept hneed h2 _ _⟩
  · have hlt : b.toNat < 0xE0 := by
      have := hb b rfl
      simp only [Resets, not_or] at this
      omega
    have hge : 0xC0 ≤ b.toNat := not_lt.mp h2
    obtain ⟨prop', hd', -, hsame⟩ := (PropByte.of_chunkProps hd).chunkProps r.prop
    rw [hd] at hd'
    cases hd'
    exact ⟨_, chunkStep_props h1 (by rwa [h.need]) h2 (hsame _ h.dict) ys,
      h.openFresh prop hge hlt _ _⟩

/-- The first chunk of a run needs nothing before it. -/
theorem chunkStep_fresh (hdict : prop.dictSize = r.prop.dictSize)
    (hs : chunkStep r xs = .next pos ys) (hb : ∀ b ∈ xs.head?, Resets b) :
    ∃ alone, (Pos.start prop).step xs = .next alone ys ∧ alone.Alike (Pos.chunk r).out pos := by
  obtain ⟨b, u1, u0, rfl, hctl, rfl⟩ | ⟨b, u1, u0, p1, p0, rfl, h1, hn, h2, rfl⟩ |
    ⟨b, u1, u0, p1, p0, d, prop', rfl, h1, hn, h2, hd, rfl⟩ := chunkStep_cases hs
  · have hone : b = 1 := by
      obtain rfl | ⟨rfl, -⟩ := hctl
      · rfl
      · rcases hb 2 rfl with h | h
        · exact h
        · exact absurd h (by decide)
    subst hone
    refine ⟨_, chunkStep_stored (.inl rfl) ys, ?_⟩
    have h11 : (1 : UInt8).toNat = 1 := rfl
    simp only [Ref2.openStored, h11, if_true]
    exact .stored _ ⟨rfl, rfl, rfl, hdict, fun h => absurd h (by decide : (0xC0 : ℕ) ≠ 0)⟩
  · have hlt : b.toNat < 0xC0 := h2
    rcases hb b rfl with rfl | hge
    · exact absurd (by decide) h1
    · omega
  · have hge : 0xE0 ≤ b.toNat := by
      rcases hb b rfl with rfl | hge
      · exact absurd (by decide) h1
      · exact hge
    obtain ⟨q, hq, -, hsame⟩ := (PropByte.of_chunkProps hd).chunkProps r.prop
    rw [hd] at hq
    cases hq
    refine ⟨_, chunkStep_props h1 (show ¬ b.toNat < 0xE0 by omega) h2 (hsame prop hdict) ys, ?_⟩
    simp only [Ref2.openPacked, if_pos hge, if_pos (show 0xA0 ≤ b.toNat by omega), Ref2.resetDic]
    exact .packed _ _ _ _ _

theorem packedStep_alike {c : Config} {base : List UInt8} {target pack : ℕ}
    (hs : packedStep prop (base ++ tail) c target pack xs = .next pos ys) :
    ∃ alone, packedStep prop base c target pack xs = .next alone ys ∧ alone.Alike tail pos := by
  obtain ⟨c', us, zs, hlt, rfl, hu, -, hstep, rfl⟩ | ⟨hl, rfl, hc, rfl, rfl⟩ := packedStep_cases hs
  · exact ⟨_, packedStep_symbol hlt hu hstep ys, .packed _ _ _ _ _⟩
  · exact ⟨_, packedStep_end hl hc ys, .chunk ⟨rfl, rfl, rfl, rfl, fun _ => ⟨rfl, rfl⟩⟩⟩

theorem storedStep_alike {n : ℕ} (h : q.Alike tail r) (hs : storedStep r n xs = .next pos ys) :
    ∃ alone, storedStep q n xs = .next alone ys ∧ alone.Alike tail pos := by
  rcases xs with _ | ⟨b, rest⟩
  · cases hs
  · simp only [storedStep] at hs ⊢
    by_cases hn : n ≤ 1
    · rw [if_pos hn] at hs ⊢
      cases hs
      exact ⟨_, rfl, .chunk (h.push b)⟩
    · rw [if_neg hn] at hs ⊢
      cases hs
      exact ⟨_, rfl, .stored _ (h.push b)⟩

/-- A step keeps the dictionary's size. -/
theorem Pos.step_dict (h : pos.step xs = .next pos' ys) :
    pos'.prop.dictSize = pos.prop.dictSize := by
  cases pos with
  | chunk r =>
      obtain ⟨b, u1, u0, -, -, rfl⟩ | ⟨b, u1, u0, p1, p0, -, -, -, -, rfl⟩ |
        ⟨b, u1, u0, p1, p0, d, prop, -, -, -, -, hd, rfl⟩ := chunkStep_cases h
      · unfold Ref2.openStored
        split <;> rfl
      · unfold Ref2.openPacked
        by_cases hc : 0xE0 ≤ b.toNat
        · rw [if_pos hc]
          rfl
        · rw [if_neg hc]
          rfl
      · obtain ⟨q, hq, hdict, -⟩ := (PropByte.of_chunkProps hd).chunkProps r.prop
        rw [hd] at hq
        cases hq
        rw [← show (Pos.chunk r).prop.dictSize = r.prop.dictSize from rfl] at hdict
        rw [← hdict]
        unfold Ref2.openPacked
        by_cases hc : 0xE0 ≤ b.toNat
        · rw [if_pos hc]
          rfl
        · rw [if_neg hc]
          rfl
  | stored r n =>
      rcases xs with _ | ⟨b, rest⟩
      · cases h
      · simp only [Pos.step, storedStep] at h
        split at h <;> cases h <;> rfl
  | packed prop base c target pack =>
      obtain ⟨c', us, zs, -, -, -, -, -, rfl⟩ | ⟨-, -, -, -, rfl⟩ := packedStep_cases h <;> rfl

end

/-! ## What the scanner has reported -/

/-- Runs that cut a stream and its output into pieces, each of them as `P` says. -/
inductive Tiled (P : Lzma2Run → List UInt8 → List UInt8 → Prop) :
    List Lzma2Run → List UInt8 → List UInt8 → Prop
  | nil : Tiled P [] [] []
  | snoc {rs : List Lzma2Run} {r : Lzma2Run} {xs out packed new : List UInt8} :
      Tiled P rs xs out → r.inOffset = xs.length → r.packedLen = packed.length →
      r.outOffset = out.length → r.unpackedLen = new.length → P r packed new →
      Tiled P (rs ++ [r]) (xs ++ packed) (out ++ new)

/-- What a reported run promises of its piece, and the grammar's word on it. -/
structure RunRead (prop : LzmaProps) (r : Lzma2Run) (packed out : List UInt8) : Prop where
  reset : r.hasDictReset = true
  starts : ∃ b ∈ packed.head?, Resets b
  chunks : Chunks packed r.chunks
  unpacked : r.chunks.unpacked = out.length
  alone : format2 prop (packed ++ [0]) = ⟨out, [], .mark⟩

/-- The run being scanned: `cur` is read of it, after output `tail`. -/
structure OpenRead (prop : LzmaProps) (o : OpenRun) (cur tail : List UInt8) (payload : ℕ)
    (pos : Pos) : Prop where
  reset : o.hasDictReset = true
  starts : ∃ b ∈ cur.head?, Resets b
  chunks : ∀ body : List UInt8, body.length = payload → Chunks (cur ++ body) o.chunks
  unpacked : o.chunks.unpacked + tail.length = pos.due
  alone : ∃ alone, Moves2 (Pos.start prop) cur alone [] ∧ alone.Alike tail pos

/-- The scanner after `done`, with the grammar at `pos`. -/
structure Scanned (prop : LzmaProps) (done : List UInt8) (pos : Pos) (s : Lzma2RunScanner) :
    Prop where
  between : s.Between
  inPos : s.inPos = done.length
  need : s.frame.needInitLevel = pos.need
  payload : s.dataRemaining = pos.payload
  outPos : s.outPos = pos.due
  runs : (s.current = none ∧ s.ready = [] ∧ done = [] ∧ pos = .start prop) ∨
    ∃ o before out cur, s.current = some o ∧ done = before ++ cur ∧
      Tiled (RunRead prop) s.ready before out ∧ o.inOffset = before.length ∧
      o.outOffset = out.length ∧ OpenRead prop o cur out.reverse s.dataRemaining pos

section
variable {prop : LzmaProps} {done xs ys us tail cur : List UInt8} {pos pos' : Pos} {r : Ref2}
  {s : Lzma2RunScanner} {o : OpenRun} {left : ℕ}

theorem head_append {us : List UInt8} (h : ∃ b ∈ cur.head?, Resets b) :
    ∃ b ∈ (cur ++ us).head?, Resets b := by
  obtain ⟨b, hb, hr⟩ := h
  rcases cur with _ | ⟨c, cur⟩
  · cases hb
  · exact ⟨b, hb, hr⟩

/-- A piece of a payload. -/
theorem OpenRead.payload_step (h : OpenRead prop o cur tail left pos)
    (hlen : us.length ≤ left) (hdue : pos'.due = pos.due)
    (hs : ∀ alone : Pos, alone.Alike tail pos → ∃ alone', alone.step us = .next alone' [] ∧
      alone'.Alike tail pos') : OpenRead prop o (cur ++ us) tail (left - us.length) pos' := by
  obtain ⟨alone, hm, ha⟩ := h.alone
  obtain ⟨alone', hstep, ha'⟩ := hs alone ha
  refine ⟨h.reset, head_append h.starts, fun body hb => ?_, hdue ▸ h.unpacked, alone', ?_, ha'⟩
  · rw [List.append_assoc]
    exact h.chunks (us ++ body) (by rw [List.length_append, hb]; omega)
  · have hm' := Moves2.append hm us
    rw [List.nil_append] at hm'
    exact hm'.trans (.single trivial hstep)

/-- The scanner passes a payload as the grammar reads it. -/
theorem Scanned.payload_step (h : Scanned prop done pos s) (hlen : us.length ≤ pos.payload)
    (hpay : pos'.payload = pos.payload - us.length) (hneed : pos'.need = pos.need)
    (hdue : pos'.due = pos.due) (hstart : pos ≠ .start prop)
    (hs : ∀ tail (alone : Pos), alone.Alike tail pos → ∃ alone', alone.step us = .next alone' [] ∧
      alone'.Alike tail pos') : Scanned prop (done ++ us) pos' (s.scan us) := by
  rw [Lzma2RunScanner.scan_payload h.between.goes h.between.sound (by rw [h.payload]; exact hlen)]
  refine ⟨⟨h.between.state, h.between.unpack, h.between.goes, h.between.sound⟩, ?_, ?_, ?_, ?_, ?_⟩
  · rw [List.length_append, ← h.inPos]
  · rw [hneed]
    exact h.need
  · rw [hpay, ← h.payload]
  · rw [hdue]
    exact h.outPos
  · obtain ⟨-, -, -, hp⟩ | ⟨o, before, out, cur, hc, hd, ht, hin, hout, ho⟩ := h.runs
    · exact absurd hp hstart
    · refine .inr ⟨o, before, out, cur ++ us, hc, by rw [hd, List.append_assoc], ht, hin, hout, ?_⟩
      exact ho.payload_step (by rw [h.payload]; exact hlen) hdue (hs out.reverse)

theorem Scanned.stored_step {n : ℕ} (h : Scanned prop done (.stored r n) s)
    (hs : storedStep r n xs = .next pos' ys) :
    ∃ us, xs = us ++ ys ∧ Scanned prop (done ++ us) pos' (s.scan us) := by
  rcases xs with _ | ⟨b, rest⟩
  · cases hs
  have hone : ∀ rest, storedStep r n (b :: rest) =
      .next (if n ≤ 1 then .chunk (r.push b) else .stored (r.push b) (n - 1)) rest := by
    intro rest
    simp only [storedStep]
    split <;> rfl
  rw [hone] at hs
  cases hs
  refine ⟨[b], rfl, h.payload_step ?_ ?_ ?_ ?_ (by simp [Pos.start]) fun tail alone ha => ?_⟩
  · simp only [List.length_singleton, Pos.payload]
    omega
  · by_cases hn : n ≤ 1
    · simp only [if_pos hn, Pos.payload, List.length_singleton]
      omega
    · simp only [if_neg hn, Pos.payload, List.length_singleton]
      omega
  · split <;> rfl
  · by_cases hn : n ≤ 1
    · simp only [if_pos hn, Pos.due, Ref2.push, List.length_cons]
      omega
    · simp only [if_neg hn, Pos.due, Ref2.push, List.length_cons]
      omega
  · cases ha with
    | stored _ ha => exact storedStep_alike ha (hone [])

theorem Scanned.packed_step {p : LzmaProps} {base : List UInt8} {c : Config} {target pack : ℕ}
    (h : Scanned prop done (.packed p base c target pack) s)
    (hs : packedStep p base c target pack xs = .next pos' ys) :
    ∃ us, xs = us ++ ys ∧ Scanned prop (done ++ us) pos' (s.scan us) := by
  obtain ⟨us, rfl, hu⟩ := packedStep_split hs
  have hsizes : us.length ≤ pack ∧ pos'.payload = pack - us.length ∧ pos'.need = 0 ∧
      pos'.due = target + base.length := by
    obtain ⟨c', us', zs, -, hus, hlen, -, -, rfl⟩ | ⟨hl, rfl, -, rfl, rfl⟩ := packedStep_cases hu
    · rw [List.append_nil] at hus
      rw [hus]
      exact ⟨hlen, rfl, rfl, rfl⟩
    · exact ⟨le_rfl, rfl, rfl, by simp only [Pos.due, Config.state_hist, hl]⟩
  obtain ⟨hlen, hpay, hneed, hdue⟩ := hsizes
  refine ⟨us, rfl, h.payload_step hlen hpay hneed hdue (by simp [Pos.start])
    fun tail alone ha => ?_⟩
  cases ha with
  | packed _ base _ _ _ => exact packedStep_alike hu

/-- Between two chunks the run being scanned may be closed. -/
theorem Scanned.closeRun (h : Scanned prop done (.chunk r) s) :
    Tiled (RunRead prop) s.closeRun.ready done (Pos.chunk r).out.reverse := by
  obtain ⟨hc, hready, rfl, hpos⟩ | ⟨o, before, out, cur, hc, rfl, ht, hin, hout, ho⟩ := h.runs
  · rw [hpos]
    simp only [Lzma2RunScanner.closeRun, hc, hready]
    exact .nil
  · obtain ⟨alone, hm, ha⟩ := ho.alone
    obtain ⟨q, hq⟩ : ∃ q, alone = .chunk q := by
      cases ha with
      | @chunk q _ _ => exact ⟨q, rfl⟩
    have hall : (Pos.chunk r).out.reverse = out ++ alone.out.reverse := by
      rw [ha.out, List.reverse_append, List.reverse_reverse]
    have hlen : (Pos.chunk r).due = out.length + alone.out.reverse.length := by
      rw [← List.length_append, ← hall, List.length_reverse]
      exact (List.length_append).symm
    have hun := ho.unpacked
    rw [List.length_reverse] at hun
    rw [hall]
    simp only [Lzma2RunScanner.closeRun, hc]
    refine .snoc ht hin ?_ hout ?_ ⟨ho.reset, ho.starts, ?_, ?_, ?_⟩
    · simp only [h.inPos, hin, List.length_append, Nat.add_sub_cancel_left]
    · simp only [h.outPos, hout, hlen, Nat.add_sub_cancel_left]
    · simpa using ho.chunks [] (by rw [h.payload]; rfl)
    · simp only
      omega
    · have hend := Moves2.append hm [0]
      rw [List.nil_append] at hend
      have hmark : alone.step [0] = .mark () [] := by
        rw [hq]
        rfl
      exact hend.mark hmark

theorem onControl_goes {b : UInt8} (hb : b ≠ 0) (hr : ¬ Resets b) (hc : s.current = some o) :
    (s.onControl b.toNat).2.ready = s.ready ∧ (s.onControl b.toNat).2.current = some o := by
  have h0 : ¬ b.toNat = 0 := fun h => hb (UInt8.toNat_inj.mp (h.trans rfl))
  have h1 : ¬ b.toNat = 1 := fun h => hr (.inl (UInt8.toNat_inj.mp (h.trans rfl)))
  have hstarts : decide (b.toNat = 0 ∨ 0xE0 ≤ b.toNat ∨ b.toNat = lzma2ControlCopyResetDic) =
      false := by
    apply decide_eq_false
    rintro (h | h | h)
    · exact h0 h
    · exact hr (.inr h)
    · exact h1 h
  simp only [Lzma2RunScanner.onControl, hstarts, if_neg h0, Bool.false_eq_true, if_false, hc]
  exact ⟨trivial, trivial⟩

theorem onControl_resets {b : UInt8} (hb : b ≠ 0) (hr : Resets b) :
    (s.onControl b.toNat).2.ready = s.closeRun.ready ∧
      (s.onControl b.toNat).2.current = some ⟨s.inPos, s.outPos, true, .default⟩ := by
  have h0 : ¬ b.toNat = 0 := fun h => hb (UInt8.toNat_inj.mp (h.trans rfl))
  have hstarts : decide (b.toNat = 0 ∨ 0xE0 ≤ b.toNat ∨ b.toNat = lzma2ControlCopyResetDic) =
      true := by
    apply decide_eq_true
    rcases hr with rfl | hr
    · exact .inr (.inr rfl)
    · exact .inr (.inl hr)
  cases hc : s.current with
  | none =>
      simp only [Lzma2RunScanner.onControl, hstarts, if_neg h0, if_true, Lzma2RunScanner.closeRun, hc]
      exact ⟨trivial, trivial⟩
  | some o =>
      simp only [Lzma2RunScanner.onControl, hstarts, if_neg h0, if_true, Lzma2RunScanner.closeRun, hc]
      exact ⟨trivial, trivial⟩

/-- A header the scanner reads with the grammar. -/
theorem Scanned.chunk_step (h : Scanned prop done (.chunk r) s) (hr : r.Ok)
    (hdict : prop.dictSize = r.prop.dictSize) (hs : chunkStep r xs = .next pos' ys) :
    ∃ us, xs = us ++ ys ∧ Scanned prop (done ++ us) pos' (s.scan us) := by
  obtain ⟨us, b, payload, unpacked, rfl, hhead, hb, hpay, hdue, hneed⟩ := chunkStep_header hs
  obtain ⟨rest, hus⟩ : ∃ rest, us = b :: rest := by
    cases hhead <;> exact ⟨_, rfl⟩
  have hb0 : b ≠ 0 := by
    rcases hb with rfl | ⟨rfl, -⟩ | ⟨hb, -⟩
    · decide
    · decide
    · rintro rfl
      exact hb (by decide)
  have hstep : chunkStep r us = .next pos' [] := by
    obtain ⟨vs, hvs, hv⟩ := chunkStep_split hs
    rwa [List.append_cancel_right hvs]
  have hcontrol : s.frame.needInitLevel = r.need := h.need
  obtain ⟨frame, p, hst, hun, hlevel, hscan⟩ := hhead.scan h.between h.payload (by rwa [hcontrol])
  refine ⟨us, rfl, ?_⟩
  rw [hscan]
  refine ⟨⟨hst, hun, h.between.goes, h.between.sound⟩, ?_, ?_, hpay.symm, ?_, .inr ?_⟩
  · simp only [h.inPos, List.length_append]
  · rw [hneed, ← hcontrol]
    exact hlevel
  · simp only [h.outPos, hdue]
  by_cases hreset : Resets b
  · obtain ⟨hready, hcur⟩ := onControl_resets (s := s) hb0 hreset
    obtain ⟨alone, hal, ha⟩ := chunkStep_fresh hdict hstep (by
      rw [hus]
      intro c hc
      cases hc
      exact hreset)
    simp only [hready, hcur, Option.map_some]
    refine ⟨_, done, (Pos.chunk r).out.reverse, us, rfl, rfl, h.closeRun, h.inPos, ?_, rfl,
      ⟨b, by rw [hus]; rfl, hreset⟩, fun body hbody => ?_, ?_, alone, .single trivial hal, ?_⟩
    · rw [List.length_reverse]
      exact h.outPos.trans (List.length_append).symm
    · exact .chunk .nil hhead hbody
    · rw [Lzma2RunChunks.add_unpacked, hdue, List.length_reverse, List.length_reverse]
      have : (Pos.chunk r).out.length = (Pos.chunk r).due := List.length_append
      simp only [Lzma2RunChunks.default, Lzma2RunChunks.unpacked]
      omega
    · rw [List.reverse_reverse]
      exact ha
  · obtain ⟨-, -, -, hp⟩ | ⟨o, before, out, cur, hc, rfl, ht, hin, hout, ho⟩ := h.runs
    · obtain rfl : r = ⟨prop, 0xE0, [], freshState []⟩ := by
        simpa [Pos.start] using hp
      rcases hb with hb | ⟨-, hb⟩ | ⟨-, hb⟩
      · exact absurd (.inl hb) hreset
      · exact absurd rfl hb
      · exact absurd (.inr hb) hreset
    · obtain ⟨hready, hcur⟩ := onControl_goes hb0 hreset hc
      obtain ⟨alone, hm, ha⟩ := ho.alone
      obtain ⟨q, rfl, hq⟩ : ∃ q, alone = .chunk q ∧ q.Alike out.reverse r := by
        cases ha with
        | @chunk q _ hq => exact ⟨q, rfl, hq⟩
      obtain ⟨alone', hal, ha'⟩ := chunkStep_alike hq hr hstep (by
        rw [hus]
        intro c hc
        cases hc
        exact hreset)
      simp only [hready, hcur, Option.map_some]
      refine ⟨_, before, out, cur ++ us, rfl, List.append_assoc _ _ _, ht, hin, hout, ho.reset,
        head_append ho.starts, fun body hbody => ?_, ?_, alone', ?_, ha'⟩
      · have hread := ho.chunks [] (by rw [h.payload]; rfl)
        rw [List.append_nil] at hread
        exact .chunk hread hhead hbody
      · have := ho.unpacked
        rw [Lzma2RunChunks.add_unpacked, hdue]
        omega
      · have hm' := Moves2.append hm us
        rw [List.nil_append] at hm'
        exact hm'.trans (.single trivial hal)

theorem Scanned.step (h : Scanned prop done pos s) (hp : pos.Ok)
    (hdict : prop.dictSize = pos.prop.dictSize) (hs : pos.step xs = .next pos' ys) :
    ∃ us, xs = us ++ ys ∧ Scanned prop (done ++ us) pos' (s.scan us) := by
  cases pos with
  | chunk r => exact h.chunk_step hp hdict hs
  | stored r n => exact h.stored_step hs
  | packed p base c target pack => exact h.packed_step hs

theorem Scanned.moves (hm : Moves2 pos xs pos' ys) (h : Scanned prop done pos s) (hp : pos.Ok)
    (hdict : prop.dictSize = pos.prop.dictSize) :
    ∃ us, xs = us ++ ys ∧ Scanned prop (done ++ us) pos' (s.scan us) := by
  induction hm generalizing done s with
  | refl => exact ⟨[], rfl, by rwa [List.append_nil]⟩
  | step _ hs _ ih =>
      obtain ⟨us, rfl, h'⟩ := h.step hp hdict hs
      obtain ⟨vs, rfl, h''⟩ := ih h' (Pos.step_next hp hs).1 (hdict.trans (Pos.step_dict hs).symm)
      refine ⟨us ++ vs, (List.append_assoc _ _ _).symm, ?_⟩
      rwa [← List.append_assoc, Lzma2RunScanner.scan_append]

theorem scanned_new (prop : LzmaProps) : Scanned prop [] (Pos.start prop) .new :=
  ⟨⟨rfl, rfl, rfl, rfl⟩, rfl, rfl, rfl, rfl, .inl ⟨rfl, rfl, rfl, rfl⟩⟩

/-- The end mark closes the last run. -/
theorem Scanned.finish (h : Scanned prop done (.chunk r) s) :
    (s.next 0).ready = s.closeRun.ready ∧ (s.next 0).finished = true ∧
      (s.next 0).failed = false ∧ (s.next 0).dataRemaining = 0 := by
  have hd : s.dataRemaining = 0 := h.payload
  rw [Lzma2RunScanner.next, if_neg (by simp [h.between.goes, h.between.sound]),
    if_neg (by simp [hd]), Lzma2RunScanner.header, if_pos h.between.state]
  have hclose : s.closeRun.failed = false ∧ s.closeRun.dataRemaining = 0 := by
    unfold Lzma2RunScanner.closeRun
    cases s.current <;> exact ⟨h.between.sound, hd⟩
  exact ⟨rfl, rfl, hclose.1, hclose.2⟩

end

end LzmaTurbo.Lzma2
